import HeaderChain.Index.Operation

/-! One store in the place of another. Where two stores give the same answers, an index cannot tell
them apart: every operation answers or fails alike over both and does the same to what is resident.
-/

namespace HeaderChain

/-- Two runs end alike: with the same answer or the same failure, in paired states. -/
inductive EndsAlike {ε σ τ α : Type} (paired : σ → τ → Prop)
    : EStateM.Result ε σ α → EStateM.Result ε τ α → Prop
  | ok {answer after after'} (ends : paired after after')
    : EndsAlike paired (.ok answer after) (.ok answer after')
  | error {failure after after'} (ends : paired after after')
    : EndsAlike paired (.error failure after) (.error failure after')

/-- What ends like a run with an answer has that answer. -/
theorem EndsAlike.exists_ok {ε σ τ α : Type} {paired : σ → τ → Prop}
    {left : EStateM.Result ε σ α} {answer : α} {after' : τ}
    (alike : EndsAlike paired left (.ok answer after'))
    : ∃ after, left = .ok answer after ∧ paired after after' := by
  cases alike with
  | ok ends => exact ⟨_, rfl, ends⟩

/-- Two actions, each on its own kind of state, end alike wherever they start in paired states. -/
def Concur {ε σ τ α : Type} (paired : σ → τ → Prop) (left : EStateM ε σ α)
    (right : EStateM ε τ α)
    : Prop :=
  ∀ state state', paired state state' → EndsAlike paired (left state) (right state')

namespace Concur

variable {ε σ τ α β : Type} {paired : σ → τ → Prop}

theorem pure (answer : α)
    : Concur paired (Pure.pure answer : EStateM ε σ α) (Pure.pure answer : EStateM ε τ α) :=
  fun _ _ start => .ok start

theorem throw (failure : ε)
    : Concur paired (MonadExcept.throw failure : EStateM ε σ α)
        (MonadExcept.throw failure : EStateM ε τ α) :=
  fun _ _ start => .error start

/-- Sequences end alike if their first parts do and their second parts do after every answer. -/
theorem bind {left : EStateM ε σ β} {right : EStateM ε τ β} {next : β → EStateM ε σ α}
    {next' : β → EStateM ε τ α} (first : Concur paired left right)
    (rest : ∀ answer, Concur paired (next answer) (next' answer))
    : Concur paired (left >>= next) (right >>= next') := by
  intro state state' start
  have outcome := first state state' start
  simp only [Bind.bind, EStateM.bind]
  generalize left state = ending at outcome ⊢
  generalize right state' = ending' at outcome ⊢
  cases outcome with
  | ok ends => exact rest _ _ _ ends
  | error ends => exact .error ends

/-- Courses of actions end alike if the actions do, one after the other. -/
theorem mapM {ω : Type} {left : ω → EStateM ε σ α} {right : ω → EStateM ε τ α} {course : List ω}
    (each : ∀ item ∈ course, Concur paired (left item) (right item))
    : Concur paired (course.mapM left) (course.mapM right) := by
  induction course with
  | nil => exact .pure []
  | cons item rest ih =>
      rw [List.mapM_cons, List.mapM_cons]
      refine (each item List.mem_cons_self).bind fun answer => ?_
      refine (ih fun other member => each other (List.mem_cons_of_mem _ member)).bind ?_
      exact fun answers => .pure _

end Concur

variable {σ τ : Type} [HeaderSource σ] [HeaderSource τ] {paired : σ → τ → Prop}

/-- Paired stores give the same answers, fail alike and are paired stores again after each read. -/
structure Interchangeable (paired : σ → τ → Prop) : Prop where
  fetch
    : ∀ key,
        Concur paired (HeaderSource.fetch key : StoreRead σ _)
          (HeaderSource.fetch key : StoreRead τ _)
  heightFor
    : ∀ key,
        Concur paired (HeaderSource.heightFor key : StoreRead σ _)
          (HeaderSource.heightFor key : StoreRead τ _)
  workThrough
    : ∀ key,
        Concur paired (HeaderSource.workThrough key : StoreRead σ _)
          (HeaderSource.workThrough key : StoreRead τ _)
  workOf
    : ∀ store store' header,
        paired store store'
        → HeaderSource.workOf store header = HeaderSource.workOf store' header

/-- Indexes that differ in nothing but their stores, which are paired. -/
structure Index.Paired (paired : σ → τ → Prop) (left : Index σ) (right : Index τ) : Prop where
  store : paired left.store right.store
  resident : left.resident = right.resident
  journal : left.journal = right.journal

namespace IndexM

omit [HeaderSource σ] [HeaderSource τ] in
/-- What follows on the resident part gets to see the same on both sides. -/
theorem concur_resident
    : Concur (Index.Paired paired) (resident : IndexM σ Resident)
        (resident : IndexM τ Resident) := by
  intro left right start
  rw [resident, resident, start.resident]
  exact .ok start

omit [HeaderSource σ] [HeaderSource τ] in
theorem concur_commit (change : Change)
    : Concur (Index.Paired paired) (commit change : IndexM σ Unit)
        (commit change : IndexM τ Unit) := by
  intro left right start
  refine .ok ⟨start.store, ?_, ?_⟩
  · simp only [start.resident]
  · simp only [start.journal]

omit [HeaderSource σ] [HeaderSource τ] in
theorem concur_sum (first second : Work)
    : Concur (Index.Paired paired) (sum first second : IndexM σ Work)
        (sum first second : IndexM τ Work) := by
  rw [sum, sum]
  cases first.add? second with
  | none => exact .throw _
  | some total => exact .pure total

omit [HeaderSource σ] [HeaderSource τ] in
theorem concur_ofStore {α : Type} {left : StoreRead σ α} {right : StoreRead τ α}
    (reads : Concur paired left right)
    : Concur (Index.Paired paired) (ofStore left) (ofStore right) := by
  intro index index' start
  have outcome := reads _ _ start.store
  simp only [ofStore]
  generalize left index.store = ending at outcome ⊢
  generalize right index'.store = ending' at outcome ⊢
  cases outcome with
  | ok ends => exact .ok ⟨ends, start.resident, start.journal⟩
  | error ends => exact .error ⟨ends, start.resident, start.journal⟩

omit [HeaderSource σ] [HeaderSource τ] in
theorem concur_remove (key : BlockHash)
    : Concur (Index.Paired paired) (remove key : IndexM σ _) (remove key : IndexM τ _) := by
  refine concur_resident.bind fun held => ?_
  cases held.get? key with
  | none => exact .pure _
  | some record => exact (concur_commit _).bind fun _ => .pure _

end IndexM

namespace Interchangeable

open IndexM

variable (same : Interchangeable paired)
include same

theorem concur_workOf (header : Header)
    : Concur (Index.Paired paired) (IndexM.workOf header : IndexM σ Work)
        (IndexM.workOf header : IndexM τ Work) := by
  intro left right start
  rw [IndexM.workOf, IndexM.workOf, same.workOf _ _ header start.store]
  exact .ok start

theorem concur_chainPosition (key : BlockHash) (work : Work) (parent : Option Record)
    : Concur (Index.Paired paired) (chainPosition key work parent : IndexM σ _)
        (chainPosition key work parent : IndexM τ _) := by
  have asked := concur_ofStore (same.heightFor key)
  cases parent with
  | some parent =>
      simp only [chainPosition]
      cases parent.childHeight? with
      | some height =>
          refine (Concur.pure _).bind fun height => ?_
          exact (concur_sum _ _).bind fun total => .pure _
      | none =>
          refine asked.bind fun height => ?_
          exact (concur_sum _ _).bind fun total => .pure _
  | none =>
      refine asked.bind fun height => ?_
      refine (concur_ofStore (same.workThrough key)).bind fun found => ?_
      cases found with
      | none => exact .throw _
      | some total => exact .pure _

theorem concur_lookup (key : BlockHash)
    : Concur (Index.Paired paired) (lookup key : IndexM σ _) (lookup key : IndexM τ _) := by
  refine concur_resident.bind fun held => ?_
  cases held.get? key with
  | some record => exact .pure _
  | none =>
      refine (concur_ofStore (same.fetch key)).bind fun found => ?_
      cases found with
      | none => exact .pure _
      | some seen =>
          refine (same.concur_workOf seen.header).bind fun work => ?_
          refine concur_resident.bind fun held => ?_
          refine (same.concur_chainPosition key work _).bind fun position => ?_
          refine (concur_commit _).bind fun _ => ?_
          exact concur_resident.bind fun held => .pure _

theorem concur_insert (header : Header) (height : Option Height) (baseline : Work)
    (firstSeen : UInt64)
    : Concur (Index.Paired paired) (insert header height baseline firstSeen : IndexM σ _)
        (insert header height baseline firstSeen : IndexM τ _) := by
  refine concur_resident.bind fun held => ?_
  split
  · exact .pure _
  · refine (same.concur_workOf header).bind fun work => ?_
    refine (concur_sum baseline work).bind fun total => ?_
    exact (concur_commit _).bind fun _ => .pure _

theorem concur_extend (header : Header) (firstSeen : UInt64)
    : Concur (Index.Paired paired) (extend header firstSeen : IndexM σ _)
        (extend header firstSeen : IndexM τ _) := by
  refine concur_resident.bind fun held => ?_
  split
  · exact .pure _
  · split
    · exact same.concur_insert _ _ _ _
    · refine (same.concur_lookup header.prev).bind fun found => ?_
      cases found with
      | none => exact .throw _
      | some parent => exact same.concur_insert _ _ _ _

theorem concur_parent (key : BlockHash)
    : Concur (Index.Paired paired) (parent key : IndexM σ _) (parent key : IndexM τ _) := by
  refine (same.concur_lookup key).bind fun found => ?_
  cases found with
  | none => exact .pure _
  | some record =>
      dsimp only
      split
      · exact .pure _
      · refine (same.concur_lookup record.prev).bind fun above => ?_
        cases above with
        | none => exact .pure _
        | some above =>
            refine concur_resident.bind fun held => ?_
            split
            · refine (concur_commit _).bind fun _ => ?_
              exact concur_resident.bind fun held => .pure _
            · exact concur_resident.bind fun held => .pure _

/-- Climbs end alike, by induction on the number of steps. -/
theorem concur_climb (steps : Nat) (key : BlockHash)
    : Concur (Index.Paired paired) (climb steps key : IndexM σ _)
        (climb steps key : IndexM τ _) := by
  induction steps generalizing key with
  | zero => exact .pure _
  | succ steps ih =>
      refine (same.concur_parent key).bind fun found => ?_
      cases found with
      | none => exact .pure _
      | some above => exact ih above.hash

theorem concur_ancestor (key : BlockHash) (depth : Nat)
    : Concur (Index.Paired paired) (ancestor key depth : IndexM σ _)
        (ancestor key depth : IndexM τ _) := by
  refine (same.concur_lookup key).bind fun found => ?_
  cases found with
  | none => exact .pure _
  | some record => exact same.concur_climb depth record.hash

/-- Descents end alike, by induction on the budget. -/
theorem concur_descend (budget : Nat) (left right : Branch)
    : Concur (Index.Paired paired) (descend budget left right : IndexM σ _)
        (descend budget left right : IndexM τ _) := by
  induction budget generalizing left right with
  | zero =>
      rw [descend, descend]
      split
      · exact .pure _
      · split
        · exact .throw _
        · exact .pure _
  | succ budget ih =>
      rw [descend, descend]
      split
      · exact .pure _
      · split
        · dsimp only
          split
          all_goals
            refine (same.concur_parent _).bind fun found => ?_
            cases found with
            | none => exact .pure _
            | some above => exact ih _ _
        · exact .pure _

theorem concur_findFork (budget : Nat) (left right : BlockHash)
    : Concur (Index.Paired paired) (findFork budget left right : IndexM σ _)
        (findFork budget left right : IndexM τ _) := by
  refine (same.concur_lookup left).bind fun found => ?_
  cases found with
  | none => exact .pure _
  | some leftRecord =>
      refine (same.concur_lookup right).bind fun found => ?_
      cases found with
      | none => exact .pure _
      | some rightRecord => exact same.concur_descend budget _ _

theorem concur_isMoreWork (base other : Record) (newHash : BlockHash) (newWork : Work)
    : Concur (Index.Paired paired) (isMoreWork base other newHash newWork : IndexM σ _)
        (isMoreWork base other newHash newWork : IndexM τ _) := by
  refine (concur_sum base.work newWork).bind fun candidate => ?_
  split
  · exact .pure _
  · refine (same.concur_lookup newHash).bind fun found => ?_
    cases found with
    | none => exact .pure _
    | some known => exact .pure _

/-- Every operation ends alike over paired stores. -/
theorem concur_perform (operation : Operation)
    : Concur (Index.Paired paired) (operation.perform : IndexM σ Answer)
        (operation.perform : IndexM τ Answer) := by
  cases operation with
  | insert header height baseline firstSeen =>
      exact (same.concur_insert header height baseline firstSeen).bind fun _ => .pure _
  | extend header firstSeen => exact (same.concur_extend header firstSeen).bind fun _ => .pure _
  | lookup key => exact (same.concur_lookup key).bind fun _ => .pure _
  | parent key => exact (same.concur_parent key).bind fun _ => .pure _
  | ancestor key depth => exact (same.concur_ancestor key depth.toNat).bind fun _ => .pure _
  | findFork budget left right =>
      exact (same.concur_findFork budget left right).bind fun _ => .pure _
  | isMoreWork base other newHash newWork =>
      exact (same.concur_isMoreWork base other newHash newWork).bind fun _ => .pure _
  | remove key => exact (concur_remove key).bind fun _ => .pure _
  | evict => exact (concur_commit .trimmed).bind fun _ => .pure _

end Interchangeable

-----------------------------------------------------------------------------------------
-- Operations interleaved with writes
-----------------------------------------------------------------------------------------

/-- What happens next: the store is written to from outside, or the index is used. -/
inductive Activity (ω : Type)
  | write (item : ω)
  | operate (operation : Operation)

namespace Activity

variable {ω β : Type}

/-- Carries an activity out, given what a write does. -/
def perform (write : ω → StoreRead σ β) : Activity ω → IndexM σ (β ⊕ Answer)
  | .write item => return .inl (← IndexM.ofStore (write item))
  | .operate operation => return .inr (← operation.perform)

/-- The outcomes of activities, one after the other whether they fail or not, and the index in the
end.
-/
def run (write : ω → StoreRead σ β)
    : List (Activity ω) → Index σ → List (Except Failure (β ⊕ Answer)) × Index σ
  | [], index => ([], index)
  | activity :: rest, index =>
      match activity.perform write index with
      | .ok answer after =>
          let (outcomes, last) := run write rest after
          (.ok answer :: outcomes, last)
      | .error failure after =>
          let (outcomes, last) := run write rest after
          (.error failure :: outcomes, last)

end Activity

namespace Interchangeable

variable {ω β : Type} {write : ω → StoreRead σ β} {write' : ω → StoreRead τ β}

theorem concur_activity (same : Interchangeable paired) {activity : Activity ω}
    (writes : ∀ item, activity = .write item → Concur paired (write item) (write' item))
    : Concur (Index.Paired paired) (activity.perform write) (activity.perform write') := by
  cases activity with
  | write item => exact (IndexM.concur_ofStore (writes item rfl)).bind fun _ => .pure _
  | operate operation => exact (same.concur_perform operation).bind fun _ => .pure _

/-- Runs over paired stores have the same outcomes and end in paired indexes, by induction on the
activities.
-/
theorem run_alike (same : Interchangeable paired) {activities : List (Activity ω)}
    (writes : ∀ item, .write item ∈ activities → Concur paired (write item) (write' item))
    {left : Index σ} {right : Index τ} (start : Index.Paired paired left right)
    : (Activity.run write activities left).1 = (Activity.run write' activities right).1
      ∧ Index.Paired paired (Activity.run write activities left).2
          (Activity.run write' activities right).2 := by
  induction activities generalizing left right with
  | nil => exact ⟨rfl, start⟩
  | cons activity rest ih =>
      have alike : EndsAlike (Index.Paired paired) (activity.perform write left)
          (activity.perform write' right) :=
        same.concur_activity (fun item new => writes item (new ▸ List.mem_cons_self)) _ _ start
      have later := @ih fun item member => writes item (List.mem_cons_of_mem _ member)
      rw [Activity.run, Activity.run]
      generalize activity.perform write left = ending at alike ⊢
      generalize activity.perform write' right = ending' at alike ⊢
      cases alike with
      | ok ends => exact ⟨congrArg _ (later ends).1, (later ends).2⟩
      | error ends => exact ⟨congrArg _ (later ends).1, (later ends).2⟩

end Interchangeable

end HeaderChain
