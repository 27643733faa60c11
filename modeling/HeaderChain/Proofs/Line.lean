import HeaderChain.Header

/-! Headers in a line, each on top of the next one. A line may go on until it reaches a hash that was
looked for, or until there is no header before.
-/

namespace HeaderChain.Header

/-- Given headers from one of the hash `key` up to one at which the line may end. Each of them names
the hash of the next one as that before its own, and none but the last may lack a predecessor.
-/
inductive Line (given ends : Header → Prop) : BlockHash → List Header → Prop
  | last {key header} (own : header.hash = key) (member : given header) (reached : ends header)
    : Line given ends key [header]
  | cons {key header rest} (own : header.hash = key) (member : given header)
    (later : header.isGenesis = false) (above : Line given ends header.prev rest)
    : Line given ends key (header :: rest)

/-- A line that leads to a hash. -/
abbrev LineTo (given : Header → Prop) (top key : BlockHash) : List Header → Prop :=
  Line given (fun header => header.hash = top) key

/-- A line that leads back to a header without predecessor. -/
abbrev Lineage (given : Header → Prop) : BlockHash → List Header → Prop :=
  Line given fun header => header.isGenesis = true

/-- The work of all headers of a line. -/
def totalWork (line : List Header) : Nat :=
  line.foldr (fun header total => header.work.toNat + total) 0

variable {given ends : Header → Prop} {key : BlockHash} {line : List Header}

theorem Line.exists_head? (joined : Line given ends key line)
    : ∃ header, line.head? = some header ∧ header.hash = key ∧ given header := by
  cases joined with
  | last own member => exact ⟨_, rfl, own, member⟩
  | cons own member => exact ⟨_, rfl, own, member⟩

theorem totalWork_append (first second : List Header)
    : totalWork (first ++ second) = totalWork first + totalWork second := by
  induction first with
  | nil => exact (Nat.zero_add _).symm
  | cons header rest ih =>
      change header.work.toNat + totalWork (rest ++ second) = _
      rw [ih, ← Nat.add_assoc]
      rfl

/-- A line can be cut at each of its headers: it leads to that header, and it goes on from there. -/
theorem Line.split {steps rest : List Header} {above : Header}
    (joined : Line given ends key (steps ++ above :: rest))
    : LineTo given above.hash key (steps ++ [above])
      ∧ Line given ends above.hash (above :: rest) := by
  induction steps generalizing key with
  | nil =>
      cases joined with
      | last own member reached => exact ⟨.last own member rfl, .last rfl member reached⟩
      | cons own member later higher => exact ⟨.last own member rfl, .cons rfl member later higher⟩
  | cons below steps ih =>
      rw [List.cons_append] at joined
      generalize upper : steps ++ above :: rest = line at joined
      cases joined with
      | last => simp at upper
      | cons own member later higher =>
          subst upper
          obtain ⟨lower, higher⟩ := ih higher
          exact ⟨.cons own member later lower, higher⟩

/-- A line goes on to the header before its end. If another header has the hash of the last one, it
takes its place.
-/
theorem Line.extend {below above : Header} (joined : LineTo given below.hash key line)
    (member : given below) (later : below.isGenesis = false) (member' : given above)
    (own : above.hash = below.prev)
    : ∃ longer, LineTo given above.hash key longer := by
  induction joined with
  | last own' _ reached =>
      exact ⟨[below, above], .cons (reached.symm.trans own') member later (.last own member' rfl)⟩
  | cons own' member'' later' _ ih =>
      obtain ⟨longer, joined⟩ := ih
      exact ⟨_, .cons own' member'' later' joined⟩

/-- Where different headers have different hashes, there is one lineage for a hash, by induction on
the one and inversion of the other.
-/
theorem Line.lineage_unique {line' : List Header}
    (injective : ∀ left right, given left → given right → left.hash = right.hash → left = right)
    (joined : Lineage given key line) (joined' : Lineage given key line')
    : line = line' := by
  induction joined generalizing line' with
  | last own member genesis =>
      cases joined' with
      | last own' member' =>
          rw [injective _ _ member member' (own.trans own'.symm)]
      | cons own' member' later =>
          rw [injective _ _ member member' (own.trans own'.symm), later] at genesis
          cases genesis
  | cons own member later _ ih =>
      cases joined' with
      | last own' member' genesis =>
          rw [injective _ _ member' member (own'.trans own.symm), later] at genesis
          cases genesis
      | cons own' member' _ above =>
          obtain rfl := injective _ _ member member' (own.trans own'.symm)
          rw [ih above]

end HeaderChain.Header
