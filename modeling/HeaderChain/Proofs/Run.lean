import HeaderChain.Proofs.Step

/-! Runs of operations on an index whose store may be changed from outside at any time between
them. What each step keeps holds after every run.
-/

namespace HeaderChain

variable {σ : Type} [HeaderSource σ]

/-- Reads of a store in one of the given states, answered or not, leave it in one of them. -/
structure ReadClosed (states : σ → Prop) : Prop where
  fetch : ∀ store key, states store → states ((HeaderSource.fetch key).final store)
  heightFor : ∀ store key, states store → states ((HeaderSource.heightFor key).final store)
  workThrough : ∀ store key, states store → states ((HeaderSource.workThrough key).final store)

/-- A store of which nothing is known is in one of all its states. -/
theorem readClosed_any : ReadClosed fun _ : σ => True :=
  ⟨fun _ _ _ => trivial, fun _ _ _ => trivial, fun _ _ _ => trivial⟩

/-- The store may do whatever it likes, but the headers it serves hash to the key asked for. -/
structure WellKeyed (states : σ → Prop) : Prop extends ReadClosed states where
  served
    : ∀ store key header firstSeen after,
        states store
        → HeaderSource.fetch key store = .ok (some ⟨header, firstSeen⟩) after
        → header.hash = key

/-- The indexes that allowed operations reach from an empty one. Between operations the store may
pass into any of its states.
-/
inductive Index.Reached (states : σ → Prop) (allowed : Operation → Prop) (config : Config)
    : Index σ → Prop
  | new {store} (state : states store) : Reached states allowed config (.new store config)
  | performed {index} (operation : Operation) (allows : allowed operation)
    (before : Reached states allowed config index)
    : Reached states allowed config (operation.next index)
  | restocked {index : Index σ} (store : σ) (state : states store)
    (before : Reached states allowed config index)
    : Reached states allowed config { index with store }

variable {states : σ → Prop} {allowed : Operation → Prop} {config : Config}

theorem Derived.states_kept {key : BlockHash} {work total : Work} {parent : Option Record}
    {height : Option Height} {before after : σ}
    (derived : Derived key work parent before height total after) (closed : ReadClosed states)
    (state : states before)
    : states after := by
  cases derived with
  | parent => exact state
  | parentWork _ asked => exact StoreRead.final_of_ok asked ▸ closed.heightFor _ key state
  | stored asked asked' =>
      have between := StoreRead.final_of_ok asked ▸ closed.heightFor _ key state
      exact StoreRead.final_of_ok asked' ▸ closed.workThrough _ key between

/-- The reads of a step leave the store in its states. -/
theorem Index.Step.states_kept {operation : Operation} {before after : Index σ}
    (step : Index.Step operation before after) (closed : ReadClosed states)
    (state : states before.store)
    : states after.store := by
  cases step with
  | fetched key final => exact final ▸ closed.fetch _ key state
  | heightAsked key final => exact final ▸ closed.heightFor _ key state
  | workAsked key final => exact final ▸ closed.workThrough _ key state
  | @hydrated key header firstSeen height total served last absent answered derived =>
      exact derived.states_kept closed (StoreRead.final_of_ok answered ▸ closed.fetch _ key state)
  | indexed => exact state
  | removed => exact state
  | linked => exact state
  | trimmed => exact state

theorem Index.Steps.states_kept {operation : Operation} {before after : Index σ}
    (steps : Index.Steps operation before after) (closed : ReadClosed states)
    (state : states before.store)
    : states after.store := by
  induction steps with
  | refl => exact state
  | tail _ step ih => exact step.states_kept closed ih

/-- What holds of an empty index, does not depend on the store and is kept by every step holds of
every index that is reached.
-/
theorem Index.Reached.invariant (property : Index σ → Prop) (closed : ReadClosed states)
    (start : ∀ store, property (.new store config))
    (restocked : ∀ index store, property index → property { index with store })
    (kept
      : ∀ operation before after,
          allowed operation
          → states before.store
          → property before
          → Index.Step operation before after
          → property after)
    {index : Index σ} (reached : Index.Reached states allowed config index)
    : states index.store ∧ property index := by
  induction reached with
  | new state => exact ⟨state, start _⟩
  | @performed index operation allows _ ih =>
      have along {after : Index σ} (steps : Index.Steps operation index after)
          : states after.store ∧ property after := by
        induction steps with
        | refl => exact ih
        | tail _ step ih =>
            exact ⟨step.states_kept closed ih.1, kept operation _ _ allows ih.1 ih.2 step⟩
      exact along (operation.next_steps index)
  | restocked store state _ ih => exact ⟨state, restocked _ store ih.2⟩

theorem Index.Reached.state (closed : ReadClosed states) {index : Index σ}
    (reached : Index.Reached states allowed config index)
    : states index.store :=
  (reached.invariant (fun _ => True) closed (fun _ => trivial) (fun _ _ => id)
    fun _ _ _ _ _ _ _ => trivial).1

end HeaderChain
