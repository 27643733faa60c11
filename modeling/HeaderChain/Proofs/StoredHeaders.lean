import HeaderChain.Proofs.Run
import HeaderChain.Store.Memory

/-! What a memory store answers. Reads count but change no entry, so what holds of the entries
stays true under any reads.
-/

namespace HeaderChain.MemoryStore

theorem fetch_eq (key : BlockHash) (store : MemoryStore)
    : HeaderSource.fetch key store
      = if store.poisoned then .error .poisoned { store with fetches := store.fetches + 1 }
        else
          .ok ((store.headers.get? key).map fun entry => ⟨entry.header, entry.firstSeen⟩)
            { store with fetches := store.fetches + 1 } := by
  obtain ⟨headers, fetches, poisoned⟩ := store
  cases poisoned <;> rfl

theorem heightFor_eq (key : BlockHash) (store : MemoryStore)
    : HeaderSource.heightFor key store
      = if store.poisoned then .error .poisoned store
        else .ok ((store.headers.get? key).bind KnownHeader.height) store := by
  obtain ⟨headers, fetches, poisoned⟩ := store
  cases poisoned <;> rfl

theorem workThrough_eq (key : BlockHash) (store : MemoryStore)
    : HeaderSource.workThrough key store
      = if store.poisoned then .error .poisoned store
        else .ok ((store.headers.get? key).map KnownHeader.chainWork) store := by
  obtain ⟨headers, fetches, poisoned⟩ := store
  cases poisoned <;> rfl

/-- A store that is not poisoned takes every entry. -/
theorem put_eq {entry : KnownHeader} {store : MemoryStore} (healthy : store.poisoned = false)
    : put entry store
      = .ok entry.header.hash
          { store with headers := store.headers.put entry.header.hash entry } := by
  obtain ⟨headers, fetches, poisoned⟩ := store
  cases healthy
  rfl

theorem final_fetch (key : BlockHash) (store : MemoryStore)
    : (HeaderSource.fetch key).final store = { store with fetches := store.fetches + 1 } := by
  obtain ⟨headers, fetches, poisoned⟩ := store
  cases poisoned <;> rfl

theorem final_heightFor (key : BlockHash) (store : MemoryStore)
    : (HeaderSource.heightFor key).final store = store := by
  obtain ⟨headers, fetches, poisoned⟩ := store
  cases poisoned <;> rfl

theorem final_workThrough (key : BlockHash) (store : MemoryStore)
    : (HeaderSource.workThrough key).final store = store := by
  obtain ⟨headers, fetches, poisoned⟩ := store
  cases poisoned <;> rfl

/-- A store with particular entries only. -/
def Holds (fits : BlockHash → KnownHeader → Prop) (store : MemoryStore) : Prop :=
  ∀ key entry, store.headers.get? key = some entry → fits key entry

theorem readClosed_holds (fits : BlockHash → KnownHeader → Prop) : ReadClosed (Holds fits) where
  fetch store key held := by
    rw [final_fetch]
    exact held
  heightFor store key held := by
    rw [final_heightFor]
    exact held
  workThrough store key held := by
    rw [final_workThrough]
    exact held

/-- A served header is that of the entry under the key, and the entry is still there. -/
theorem entry_of_fetch {key : BlockHash} {store after : MemoryStore} {seen : SeenHeader}
    (served : HeaderSource.fetch key store = .ok (some seen) after)
    : ∃ entry,
        store.headers.get? key = some entry
        ∧ seen = ⟨entry.header, entry.firstSeen⟩
        ∧ after.headers = store.headers := by
  rw [fetch_eq] at served
  split at served
  · cases served
  · obtain ⟨entry, found, same⟩ := Option.map_eq_some_iff.mp (EStateM.Result.ok.inj served).1
    refine ⟨entry, found, same.symm, ?_⟩
    rw [← (EStateM.Result.ok.inj served).2]

theorem height_of_heightFor {key : BlockHash} {store after : MemoryStore}
    {height : Option Height} (told : HeaderSource.heightFor key store = .ok height after)
    : height = (store.headers.get? key).bind KnownHeader.height ∧ after = store := by
  rw [heightFor_eq] at told
  split at told
  · cases told
  · obtain ⟨rfl, rfl⟩ := EStateM.Result.ok.inj told
    exact ⟨rfl, rfl⟩

theorem work_of_workThrough {key : BlockHash} {store after : MemoryStore} {total : Option Work}
    (told : HeaderSource.workThrough key store = .ok total after)
    : total = (store.headers.get? key).map KnownHeader.chainWork ∧ after = store := by
  rw [workThrough_eq] at told
  split at told
  · cases told
  · obtain ⟨rfl, rfl⟩ := EStateM.Result.ok.inj told
    exact ⟨rfl, rfl⟩

/-- What holds of the entries holds of one with the header that is served. -/
theorem Holds.exists_served {fits : BlockHash → KnownHeader → Prop} {key : BlockHash}
    {store after : MemoryStore} {header : Header} {firstSeen : UInt64} (held : Holds fits store)
    (served : HeaderSource.fetch key store = .ok (some ⟨header, firstSeen⟩) after)
    : ∃ entry, fits key entry ∧ entry.header = header := by
  obtain ⟨entry, found, same, _⟩ := entry_of_fetch served
  cases same
  exact ⟨entry, held key entry found, rfl⟩

/-- A store whose entries are filed under their headers' hashes serves headers under their own
hashes.
-/
theorem wellKeyed : WellKeyed (Holds fun key entry => entry.header.hash = key) where
  toReadClosed := readClosed_holds _
  served store key header firstSeen after held served := by
    obtain ⟨entry, own, rfl⟩ := held.exists_served served
    exact own

end HeaderChain.MemoryStore

/-! A fork of three headers and a store that has it. -/

namespace HeaderChain.Fork

/-- A header without predecessor. -/
def root : Header := ⟨2, .zero, .zero, 0, 0x207fffff, 0⟩

/-- A child of the root. -/
def left : Header := ⟨2, root.hash, .zero, 1, 0x207fffff, 1⟩

/-- Another child of the root. -/
def right : Header := ⟨2, root.hash, .zero, 1, 0x207fffff, 2⟩

theorem hash_root
    : root.hash
      = ⟨0x0adfd7262c821d42f1d53e854dff643c9e0bac8d733f9eb1901fcb416c47b141⟩ := by
  decide +kernel

theorem hash_left
    : left.hash
      = ⟨0x5dfceb21c8d8fd6a52059641c774e4115c8e2582378a7a5de4961e64e99f6de8⟩ := by
  rw [left, hash_root]
  decide +kernel

theorem hash_right
    : right.hash
      = ⟨0xb8b3eebaa1a4b9d4604abca26d8b7fdd0b46b2fb5ef2262d71fc63e55deb2a81⟩ := by
  rw [right, hash_root]
  decide +kernel

theorem root_ne_zero : root.hash ≠ .zero := by
  rw [hash_root]
  decide

theorem left_ne_zero : left.hash ≠ .zero := by
  rw [hash_left]
  decide

theorem right_ne_zero : right.hash ≠ .zero := by
  rw [hash_right]
  decide

theorem left_ne_root : left.hash ≠ root.hash := by
  rw [hash_left, hash_root]
  decide

theorem right_ne_root : right.hash ≠ root.hash := by
  rw [hash_right, hash_root]
  decide

theorem left_ne_right : left.hash ≠ right.hash := by
  rw [hash_left, hash_right]
  decide

/-- The entries of the fork. -/
def rootEntry : KnownHeader := ⟨root, some 0, .ofNat 2, 5⟩

def leftEntry : KnownHeader := ⟨left, some 1, .ofNat 4, 6⟩

def rightEntry : KnownHeader := ⟨right, some 1, .ofNat 4, 7⟩

/-- A store that has the fork. -/
def store : MemoryStore :=
  { MemoryStore.empty with
    headers :=
      ((MemoryStore.empty.headers.put root.hash rootEntry).put left.hash leftEntry).put
        right.hash rightEntry }

theorem holds_store {fits : BlockHash → KnownHeader → Prop} (first : fits root.hash rootEntry)
    (second : fits left.hash leftEntry) (third : fits right.hash rightEntry)
    : MemoryStore.Holds fits store := by
  intro key entry found
  simp only [store, KeyedTable.get?_put] at found
  split at found
  · next same =>
      cases found
      exact same ▸ third
  · split at found
    · next same =>
        cases found
        exact same ▸ second
    · split at found
      · next same =>
          cases found
          exact same ▸ first
      · cases found

theorem get?_store (key : BlockHash)
    : store.headers.get? key
      = if key = right.hash then some rightEntry
        else if key = left.hash then some leftEntry
        else if key = root.hash then some rootEntry
        else none := by
  simp only [store, KeyedTable.get?_put]
  rfl

theorem holds_keyed : MemoryStore.Holds (fun key entry => entry.header.hash = key) store :=
  holds_store rfl rfl rfl

end HeaderChain.Fork
