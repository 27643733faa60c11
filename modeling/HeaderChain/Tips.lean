import HeaderChain.Record

/-! Candidates for the end of the best chain, best first. Candidates at the same position are told
apart by their hashes, so they are neighbours and never merged.
-/

namespace HeaderChain

/-- A candidate: a position and the hash of the header that holds it. -/
structure Tip where
  position : Position
  hash : BlockHash
  deriving DecidableEq

namespace Tip

/-- A candidate comes first by its position, or at the same position by the lesser hash. -/
def Precedes (left right : Tip) : Prop :=
  left.position.Precedes right.position
    ∨ (left.position = right.position ∧ left.hash < right.hash)

instance (left right : Tip) : Decidable (left.Precedes right) :=
  inferInstanceAs (Decidable (_ ∨ _))

/-- No candidate comes before itself. -/
theorem precedes_irrefl (tip : Tip) : ¬ tip.Precedes tip := by
  rintro (better | ⟨_, lesser⟩)
  · exact tip.position.precedes_irrefl better
  · exact tip.hash.lt_irrefl lesser

/-- Candidates that come one before the other are all different. -/
theorem nodup_of_pairwise {members : List Tip} (sorted : members.Pairwise Tip.Precedes)
    : members.Nodup := by
  refine sorted.imp ?_
  intro left right precedes same
  exact right.precedes_irrefl (same ▸ precedes)

/-- Coming first is transitive, by cases on which of the two rules decided. -/
theorem precedes_trans {first second third : Tip}
    (before : first.Precedes second) (after : second.Precedes third)
    : first.Precedes third := by
  rcases before with better | ⟨same, lesser⟩ <;> rcases after with better' | ⟨same', lesser'⟩
  · exact .inl (Position.precedes_trans better better')
  · exact .inl (same' ▸ better)
  · exact .inl (same ▸ better')
  · exact .inr ⟨same.trans same', Digest.lt_trans lesser lesser'⟩

/-- Of two different candidates one comes first. -/
theorem precedes_or_precedes_of_ne {left right : Tip} (different : left ≠ right)
    : left.Precedes right ∨ right.Precedes left := by
  by_cases same : left.position = right.position
  · have apart : left.hash ≠ right.hash := fun equal => different (by
      cases left; cases right; simp_all)
    exact (Digest.lt_or_gt_of_ne apart).imp (fun lesser => .inr ⟨same, lesser⟩)
      (fun lesser => .inr ⟨same.symm, lesser⟩)
  · exact (Position.precedes_or_precedes_of_ne same).imp .inl .inl

/-- Adds a candidate at its place in a list kept best first; one that is there already stays. -/
def place (tip : Tip) : List Tip → List Tip
  | [] => [tip]
  | head :: rest =>
      if tip = head then head :: rest
      else if tip.Precedes head then tip :: head :: rest
      else head :: place tip rest

/-- Placing a candidate adds it and nothing else, by list induction. -/
theorem mem_place {tip other : Tip} {members : List Tip}
    : other ∈ place tip members ↔ other = tip ∨ other ∈ members := by
  induction members with
  | nil => simp [place]
  | cons head rest ih =>
      unfold place
      split
      · next same => subst same; simp
      · split
        · simp
        · simp only [List.mem_cons, ih]
          exact or_left_comm

/-- Placing a candidate keeps the list strictly best first, by list induction. -/
theorem pairwise_place {tip : Tip} {members : List Tip}
    (sorted : members.Pairwise Tip.Precedes)
    : (place tip members).Pairwise Tip.Precedes := by
  induction members with
  | nil => simp [place]
  | cons head rest ih =>
      obtain ⟨first, tail⟩ := List.pairwise_cons.mp sorted
      unfold place
      split
      · exact sorted
      · next different =>
        split
        · next ahead =>
            refine List.pairwise_cons.mpr ⟨fun other member => ?_, sorted⟩
            rcases List.mem_cons.mp member with rfl | member
            · exact ahead
            · exact precedes_trans ahead (first other member)
        · next behind =>
            refine List.pairwise_cons.mpr ⟨fun other member => ?_, ih tail⟩
            rcases mem_place.mp member with rfl | member
            · exact (precedes_or_precedes_of_ne different).resolve_left behind
            · exact first other member

end Tip

/-- The candidate that a record stands for. -/
def Record.tip (record : Record) : Tip :=
  ⟨record.position, record.hash⟩

/-- The candidates, best first. -/
structure Tips where
  members : List Tip
  deriving DecidableEq

namespace Tips

/-- No candidates. -/
def empty : Tips :=
  ⟨[]⟩

/-- The candidates with a record among them. -/
def insert (tips : Tips) (record : Record) : Tips :=
  ⟨record.tip.place tips.members⟩

/-- The candidates without a record. -/
def erase (tips : Tips) (record : Record) : Tips :=
  ⟨tips.members.erase record.tip⟩

/-- The hashes of the candidates, best first. -/
def hashes (tips : Tips) : List BlockHash :=
  tips.members.map Tip.hash

/-- The hash of the best candidate. -/
def best? (tips : Tips) : Option BlockHash :=
  tips.hashes.head?

/-- The number of candidates. -/
def size (tips : Tips) : Nat :=
  tips.members.length

end Tips

end HeaderChain
