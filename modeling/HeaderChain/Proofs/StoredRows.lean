import HeaderChain.Proofs.Catalog
import HeaderChain.Proofs.Substitution
import HeaderChain.Proofs.ValidText
import HeaderChain.Store.Rows
import Mathlib.Data.List.Dedup

/-! Rows in the place of headers in memory. A row tells everything that was written into it, so
after the same writes a row store mirrors a memory store, and neither reads of the stores nor an
index over them can tell the two apart.
-/

namespace HeaderChain

-----------------------------------------------------------------------------------------
-- What a row tells
-----------------------------------------------------------------------------------------

/-- The time of an entry is in the range of stored integers. -/
def KnownHeader.InRange (entry : KnownHeader) : Prop :=
  entry.firstSeen.toNat < 1 <<< 63

instance (entry : KnownHeader) : Decidable entry.InRange :=
  inferInstanceAs (Decidable (_ < _))

namespace Row

/-- A row tells the header, the time, the height and the work of an entry. -/
structure Tells (row : Row) (key : BlockHash) (entry : KnownHeader) : Prop where
  seenHeader : row.seenHeader key = .ok ⟨entry.header, entry.firstSeen⟩
  knownHeight : row.knownHeight = .ok entry.height
  knownWork : row.knownWork key = .ok entry.chainWork

/-- A number without sign bit is the same as a stored integer. -/
theorem toInt_toInt64 {value : UInt64} (unsigned : value.toNat < 1 <<< 63)
    : value.toInt64.toInt = value.toNat := by
  have bound : 2 * value.toNat < 1 <<< 64 := by omega
  exact BitVec.toInt_eq_toNat_of_lt bound

/-- The bound that writes are checked against is the range of stored integers. -/
theorem maxValue_lt_iff {value : UInt64}
    : Int64.maxValue.toUInt64 < value ↔ ¬ value.toNat < 1 <<< 63 := by
  rw [UInt64.lt_iff_toNat_lt, Nat.not_lt]
  exact Iff.rfl

theorem seenHeader_of_columns {row : Row} {key : BlockHash} {entry : KnownHeader}
    (inRange : entry.InRange) (header : row.header = .blob entry.header.encode)
    (firstSeen : row.firstSeen = .integer entry.firstSeen.toInt64)
    : row.seenHeader key = .ok ⟨entry.header, entry.firstSeen⟩ := by
  have unsigned : ¬ entry.firstSeen.toInt64 < 0 := by
    rw [Int64.lt_iff_toInt_lt, toInt_toInt64 inRange]
    exact Int.not_lt.mpr (Int.natCast_nonneg _)
  simp [seenHeader, header, firstSeen, blobIn, integerIn, Header.decode_encode, bind,
    Except.bind, Except.mapError, unsigned]

theorem knownHeight_of_column {row : Row} {height : Option Height}
    (column : row.height = height.elim .null fun height => .integer height.toUInt64.toInt64)
    : row.knownHeight = .ok height := by
  cases height with
  | none => simp only [knownHeight, column, Option.elim_none]
  | some height =>
      have bound := height.toNat_lt
      have value : height.toUInt64.toInt64.toInt = height.toNat := by
        rw [toInt_toInt64, UInt32.toNat_toUInt64]
        exact Nat.lt_trans bound (by decide)
      have fits : 0 ≤ height.toUInt64.toInt64 ∧ height.toUInt64.toInt64.toInt < UInt32.size := by
        rw [Int64.le_iff_toInt_le, value]
        exact ⟨Int.natCast_nonneg _, Int.ofNat_lt.mpr bound⟩
      simp only [knownHeight, column, Option.elim_some, integerIn, bind, Except.bind, if_pos fits,
        UInt64.toUInt64_toInt64, UInt32.toUInt32_toUInt64]

theorem knownWork_of_column {row : Row} {key : BlockHash} {work : Work}
    (column : row.chainWork = .text (Hex.encode (Bytes.bigEndian 32 work.toNat)))
    : row.knownWork key = .ok work := by
  have small : work.toNat < Bytes.capacity 32 := work.toNat_lt
  have same : Work.ofNat work.toNat = work := Work.toNat_inj.mp (Work.toNat_ofNat work.toNat_lt)
  have clean
      : Utf8.flaw? (Text.ofString (Hex.encode (Bytes.bigEndian 32 work.toNat))).bytes = none :=
    Text.flaw?_eq_none_iff.mpr ⟨_, rfl⟩
  have read
      : Hex.decodeBytes (Text.ofString (Hex.encode (Bytes.bigEndian 32 work.toNat))).bytes
        = .ok (Bytes.bigEndian 32 work.toNat) :=
    Hex.decode_encode _
  simp [knownWork, column, textIn, clean, read, bind, Except.bind, Except.mapError,
    Bytes.ofBigEndian_bigEndian, Nat.mod_eq_of_lt small, same]

/-- The row of an entry in range is complete, and as stored it tells the entry. -/
theorem exists_ofHeader {entry : KnownHeader} (inRange : entry.InRange) (key : BlockHash)
    : ∃ row,
        ofHeader entry.header entry.height entry.chainWork entry.firstSeen = .ok row
        ∧ row.isComplete = true
        ∧ row.stored.Tells key entry := by
  have accepted : ¬ Int64.maxValue.toUInt64 < entry.firstSeen := by
    rw [maxValue_lt_iff, Classical.not_not]
    exact inRange
  refine ⟨_, if_neg accepted, rfl, seenHeader_of_columns inRange rfl rfl,
    knownHeight_of_column ?_, knownWork_of_column rfl⟩
  cases entry.height <;> rfl

end Row

-----------------------------------------------------------------------------------------
-- A row store that mirrors a memory store
-----------------------------------------------------------------------------------------

namespace RowStore

/-- Writes an entry. -/
def save (entry : KnownHeader) : StoreRead RowStore BlockHash :=
  put entry.header entry.height entry.chainWork entry.firstSeen

/-- Files the row of an entry under any key. An entry out of range has no row. -/
def file (key : BlockHash) (entry : KnownHeader) (rows : RowStore) : RowStore :=
  match Row.ofHeader entry.header entry.height entry.chainWork entry.firstSeen with
  | .ok row => rows.putRow key row
  | .error _ => rows

/-- The row under the text of each hash tells the entry under the hash, and there are no others. -/
structure Mirrors (rows : RowStore) (memory : MemoryStore) : Prop where
  tells
    : ∀ key,
        Option.Rel (fun row entry => row.Tells key entry) (rows.rows.get? key.text)
          (memory.headers.get? key)
  size : rows.size = memory.headers.size
  healthy : memory.poisoned = false

theorem mirrors_empty : Mirrors .empty .empty where
  tells _ := .none
  size := rfl
  healthy := rfl

theorem Mirrors.contains_eq {rows : RowStore} {memory : MemoryStore}
    (mirrors : rows.Mirrors memory) (key : BlockHash)
    : rows.rows.contains key.text = memory.headers.contains key := by
  have tells := mirrors.tells key
  rw [← KeyedTable.isSome_get?, ← KeyedTable.isSome_get?]
  generalize rows.rows.get? key.text = row at tells ⊢
  generalize memory.headers.get? key = entry at tells ⊢
  cases tells with
  | none => rfl
  | some _ => rfl

/-- A read of a row ends like a read of the entry that the row tells. -/
theorem Mirrors.readRow_eq {rows : RowStore} {memory : MemoryStore} {key : BlockHash} {α : Type}
    {read : Row → Except StoreError (Option α)} {told : KnownHeader → Option α}
    (mirrors : rows.Mirrors memory)
    (reads : ∀ row entry, row.Tells key entry → read row = .ok (told entry))
    : readRow key read rows = .ok ((memory.headers.get? key).bind told) rows := by
  have tells := mirrors.tells key
  rw [readRow]
  generalize rows.rows.get? key.text = row at tells ⊢
  generalize memory.headers.get? key = entry at tells ⊢
  cases tells with
  | none => rfl
  | some tells => simp [reads _ _ tells]

theorem Mirrors.fetch_eq {rows : RowStore} {memory : MemoryStore} (mirrors : rows.Mirrors memory)
    (key : BlockHash)
    : HeaderSource.fetch key rows
      = .ok ((memory.headers.get? key).map fun entry => ⟨entry.header, entry.firstSeen⟩) rows := by
  rw [Option.map_eq_bind]
  refine mirrors.readRow_eq fun row entry tells => ?_
  simp [tells.seenHeader, Except.map]

theorem Mirrors.heightFor_eq {rows : RowStore} {memory : MemoryStore}
    (mirrors : rows.Mirrors memory) (key : BlockHash)
    : HeaderSource.heightFor key rows
      = .ok ((memory.headers.get? key).bind KnownHeader.height) rows :=
  mirrors.readRow_eq fun _ _ tells => tells.knownHeight

theorem Mirrors.workThrough_eq {rows : RowStore} {memory : MemoryStore}
    (mirrors : rows.Mirrors memory) (key : BlockHash)
    : HeaderSource.workThrough key rows
      = .ok ((memory.headers.get? key).map KnownHeader.chainWork) rows := by
  rw [Option.map_eq_bind]
  refine mirrors.readRow_eq fun row entry tells => ?_
  simp [tells.knownWork, Except.map]

theorem interchangeable : Interchangeable Mirrors where
  fetch key rows memory mirrors := by
    rw [mirrors.fetch_eq, MemoryStore.fetch_eq, if_neg (by simp [mirrors.healthy])]
    exact .ok ⟨mirrors.tells, mirrors.size, mirrors.healthy⟩
  heightFor key rows memory mirrors := by
    rw [mirrors.heightFor_eq, MemoryStore.heightFor_eq, if_neg (by simp [mirrors.healthy])]
    exact .ok mirrors
  workThrough key rows memory mirrors := by
    rw [mirrors.workThrough_eq, MemoryStore.workThrough_eq, if_neg (by simp [mirrors.healthy])]
    exact .ok mirrors
  workOf _ _ _ _ := rfl

/-- A row store that mirrors a memory store serves what that knows, and reads do not change it. -/
theorem Mirrors.serves {rows : RowStore} {memory : MemoryStore} (mirrors : rows.Mirrors memory)
    : memory.catalog.Serves (· = rows) where
  fetch _ key state := ⟨rows, state ▸ mirrors.fetch_eq key, rfl⟩
  heightFor _ key state := ⟨rows, state ▸ mirrors.heightFor_eq key, rfl⟩
  workThrough _ key state := ⟨rows, state ▸ mirrors.workThrough_eq key, rfl⟩
  workOf _ _ _ := rfl

/-- An entry in range is saved as its row under its own hash. -/
theorem save_eq {entry : KnownHeader} (inRange : entry.InRange) (rows : RowStore)
    : save entry rows = .ok entry.header.hash (rows.file entry.header.hash entry) := by
  obtain ⟨row, made, _⟩ := Row.exists_ofHeader inRange entry.header.hash
  simp [save, put, file, made]

/-- An entry out of range is refused, and nothing changes. -/
theorem save_eq_refused {entry : KnownHeader} (outOfRange : ¬ entry.InRange) (rows : RowStore)
    : save entry rows = .error .firstSeenTooLarge rows := by
  have refused : Int64.maxValue.toUInt64 < entry.firstSeen := Row.maxValue_lt_iff.mpr outOfRange
  rw [save, put, Row.ofHeader, if_pos refused]

/-- Mirrors stay mirrors when an entry in range is filed in both, under whatever key. -/
theorem Mirrors.file {rows : RowStore} {memory : MemoryStore} {entry : KnownHeader}
    (mirrors : rows.Mirrors memory) (inRange : entry.InRange) (key : BlockHash)
    : (rows.file key entry).Mirrors
        { memory with headers := memory.headers.put key entry } := by
  obtain ⟨row, made, complete, tells⟩ := Row.exists_ofHeader inRange key
  have filed : rows.file key entry = ⟨rows.rows.put key.text row.stored⟩ := by
    simp [RowStore.file, made, putRow, complete]
  rw [filed]
  refine ⟨fun other => ?_, ?_, mirrors.healthy⟩
  · simp only [KeyedTable.get?_put, Digest.text_inj]
    split
    · next same => exact .some (same ▸ tells)
    · exact mirrors.tells other
  · have size : rows.rows.size = memory.headers.size := mirrors.size
    simp only [RowStore.size, KeyedTable.size_put, mirrors.contains_eq, size]

/-- Mirrors stay mirrors when an entry in range is written into both. -/
theorem concur_save {entry : KnownHeader} (inRange : entry.InRange)
    : Concur Mirrors (save entry) (MemoryStore.put entry) := by
  intro rows memory mirrors
  rw [save_eq inRange, MemoryStore.put_eq mirrors.healthy]
  exact .ok (mirrors.file inRange entry.header.hash)

end RowStore

-----------------------------------------------------------------------------------------
-- Sequences of writes
-----------------------------------------------------------------------------------------

/-- What a store knows after entries were written one after the other: under each hash the latest
entry with that hash.
-/
def Catalog.written (entries : List KnownHeader) : Catalog :=
  ⟨fun key => entries.reverse.find? fun entry => entry.header.hash = key, Header.work⟩

/-- The number of different hashes in a sequence of entries. -/
def KnownHeader.distinct (entries : List KnownHeader) : Nat :=
  (entries.map fun entry => entry.header.hash).dedup.length

namespace MemoryStore

/-- Entries are put one after the other, by induction on them. -/
theorem mapM_put_eq (entries : List KnownHeader) {store : MemoryStore}
    (healthy : store.poisoned = false)
    : ∃ headers,
        entries.mapM put store
          = .ok (entries.map fun entry => entry.header.hash) { store with headers }
        ∧ ∀ key,
            headers.get? key
              = ((Catalog.written entries).entry key).or (store.headers.get? key) := by
  induction entries generalizing store with
  | nil => exact ⟨store.headers, rfl, fun _ => rfl⟩
  | cons entry rest ih =>
      obtain ⟨headers, done, known⟩ :=
        @ih { store with headers := store.headers.put entry.header.hash entry } healthy
      refine ⟨headers, ?_, fun key => ?_⟩
      · rw [List.mapM_cons]
        simp only [bind, EStateM.bind, put_eq healthy, done]
        rfl
      · simp only [known, KeyedTable.get?_put, Catalog.written, List.reverse_cons,
          List.find?_append, Option.or_assoc]
        by_cases same : entry.header.hash = key
        · simp [same]
        · have apart : ¬ key = entry.header.hash := fun equal => same equal.symm
          simp [same, apart]

/-- An empty store to which entries were put knows the latest under each hash, and nothing else. -/
theorem exists_written (entries : List KnownHeader)
    : ∃ memory,
        entries.mapM put .empty = .ok (entries.map fun entry => entry.header.hash) memory
        ∧ memory.poisoned = false
        ∧ memory.catalog = .written entries
        ∧ memory.headers.size = KnownHeader.distinct entries := by
  have healthy : MemoryStore.empty.poisoned = false := rfl
  obtain ⟨headers, done, known⟩ := mapM_put_eq entries healthy
  have latest (key : BlockHash) : headers.get? key = (Catalog.written entries).entry key := by
    rw [known]
    exact Option.or_none
  refine ⟨_, done, rfl, ?_, ?_⟩
  · rw [catalog, funext latest]
    rfl
  · -- both lists of keys are without repetition, and a hash is in one if it is in the other
    have members (key : BlockHash)
        : key ∈ headers.keys ↔ key ∈ (entries.map fun entry => entry.header.hash).dedup := by
      rw [← not_iff_not, ← KeyedTable.get?_eq_none_iff, latest]
      simp [Catalog.written]
    have same := (List.perm_ext_iff_of_nodup headers.nodup (List.nodup_dedup _)).mpr members
    rw [KnownHeader.distinct, ← same.length_eq]
    exact (List.length_map ..).symm

end MemoryStore

namespace RowStore

/-- Two stores to which the same entries were written answer alike: as long as nothing is written,
both know the latest entry under each hash and count the hashes. Entries out of range are refused.
An index does the same over both, also if more is written in the course of its operations.
-/
structure Equivalent (entries : List KnownHeader) (rows : RowStore) (memory : MemoryStore)
    : Prop where
  rowsServe : (Catalog.written entries).Serves (· = rows)
  memoryServes
    : (Catalog.written entries).Serves fun other : MemoryStore =>
        other.headers = memory.headers ∧ other.poisoned = false
  rowCount : rows.size = KnownHeader.distinct entries
  memoryCount : MemoryStore.size memory = .ok (KnownHeader.distinct entries) memory
  refused : ∀ entry, ¬ entry.InRange → save entry rows = .error .firstSeenTooLarge rows
  runs
    : ∀ config activities,
        (∀ entry, Activity.write entry ∈ activities → entry.InRange)
        → let (outcomes, index) := Activity.run save activities (.new rows config)
          let (outcomes', index') := Activity.run MemoryStore.put activities (.new memory config)
          outcomes = outcomes'
          ∧ index.resident = index'.resident
          ∧ index.journal = index'.journal

/-- A row store and a memory store that are empty at first take any sequence of writes of entries
in range, and are equivalent then.
-/
theorem saves_equivalent (entries : List KnownHeader)
    (inRange : ∀ entry ∈ entries, entry.InRange)
    : ∃ rows memory,
        entries.mapM save .empty = .ok (entries.map fun entry => entry.header.hash) rows
        ∧ entries.mapM MemoryStore.put .empty
            = .ok (entries.map fun entry => entry.header.hash) memory
        ∧ Equivalent entries rows memory := by
  obtain ⟨memory, put, healthy, known, count⟩ := MemoryStore.exists_written entries
  have alike := Concur.mapM (fun entry member => concur_save (inRange entry member))
    .empty .empty mirrors_empty
  rw [put] at alike
  obtain ⟨rows, saved, mirrors⟩ := alike.exists_ok
  refine ⟨rows, memory, saved, put, known ▸ mirrors.serves, known ▸ memory.serves_catalog,
    mirrors.size.trans count, ?_, fun entry out => save_eq_refused out rows, ?_⟩
  · obtain ⟨headers, fetches, poisoned⟩ := memory
    cases healthy
    exact congrArg (EStateM.Result.ok · _) count
  · intro config activities writes
    have start : Index.Paired Mirrors (.new rows config) (.new memory config) :=
      ⟨mirrors, rfl, rfl⟩
    have alike := interchangeable.run_alike
      (fun entry member => concur_save (writes entry member)) start
    exact ⟨alike.1, alike.2.resident, alike.2.journal⟩

end RowStore

namespace Fork

/-- The left child with the greatest work and time that can be stored, and without height. -/
def rewritten : KnownHeader :=
  ⟨left, none, .ofNat ((1 <<< 256) - 1), 0x7fffffffffffffff⟩

/-- Writes of the children and the root, the left child first with the greatest height and again in
the end.
-/
def writes : List KnownHeader :=
  [{ leftEntry with height := some 0xffffffff }, rightEntry, rootEntry, rewritten]

theorem saves_equivalent_rewritten
    : (∀ entry ∈ writes, entry.InRange)
      ∧ (Catalog.written writes).entry left.hash = some rewritten
      ∧ (Catalog.written writes).entry root.hash = some rootEntry
      ∧ KnownHeader.distinct writes = 3
      ∧ ∃ rows memory,
          writes.mapM RowStore.save .empty
            = .ok [left.hash, right.hash, root.hash, left.hash] rows
          ∧ writes.mapM MemoryStore.put .empty
              = .ok [left.hash, right.hash, root.hash, left.hash] memory
          ∧ RowStore.Equivalent writes rows memory := by
  have inRange : ∀ entry ∈ writes, entry.InRange := by decide
  refine ⟨inRange, ?_, ?_, ?_, RowStore.saves_equivalent writes inRange⟩
  · simp [Catalog.written, writes, rewritten]
  · simp [Catalog.written, writes, rewritten, rootEntry, left_ne_root]
  · simp [KnownHeader.distinct, writes, rewritten, leftEntry, rightEntry, rootEntry,
      left_ne_root.symm, left_ne_right.symm, right_ne_root, List.dedup_cons_of_notMem]

end Fork

end HeaderChain
