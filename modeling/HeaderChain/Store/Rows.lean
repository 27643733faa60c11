import HeaderChain.KeyedTable
import HeaderChain.Store.Source

/-! A store that keeps headers as rows of typed values under the texts of their hashes. Rows are
written as given, apart from what their columns convert, and only checked when they are read.
-/

namespace HeaderChain

/-- The columns of a row besides its key. -/
structure Row where
  height : Cell
  chainWork : Cell
  firstSeen : Cell
  header : Cell
  deriving DecidableEq

namespace Row

/-- The row of a header with the given metadata, unless its time exceeds the stored integers. -/
def ofHeader (header : Header) (height : Option Height) (chainWork : Work) (firstSeen : UInt64)
    : Except StoreError Row :=
  if Int64.maxValue.toUInt64 < firstSeen then .error .firstSeenTooLarge
  else
    .ok {
      height := height.elim .null fun height => .integer height.toUInt64.toInt64
      chainWork := .text (Hex.encode (Bytes.bigEndian 32 chainWork.toNat))
      firstSeen := .integer firstSeen.toInt64
      header := .blob header.encode }

/-- A row as its columns store it: height and time prefer integers, work prefers text. -/
def stored (row : Row) : Row :=
  { row with
    height := row.height.toNumber
    chainWork := row.chainWork.toText
    firstSeen := row.firstSeen.toNumber }

/-- A stored row is stored as it is. -/
theorem stored_stored (row : Row)
    : row.stored.stored = row.stored := by
  simp only [stored, Cell.toNumber_toNumber, Cell.toText_toText]

/-- Whether every column but the height has a value. -/
def isComplete (row : Row) : Bool :=
  row.chainWork ≠ .null ∧ row.firstSeen ≠ .null ∧ row.header ≠ .null

/-- The bytes in a column of blobs. -/
def blobIn (column : Column) : Cell → Except StoreError (List UInt8)
  | .blob bytes => .ok bytes
  | cell => .error (.wrongKind column cell.kind)

/-- The number in a column of integers. -/
def integerIn (column : Column) : Cell → Except StoreError Int64
  | .integer value => .ok value
  | cell => .error (.wrongKind column cell.kind)

/-- The text in a column of texts. One that is not UTF-8 is refused. -/
def textIn (column : Column) : Cell → Except StoreError Text
  | .text value =>
      match Utf8.flaw? value.bytes with
      | none => .ok value
      | some flaw => .error (.notUtf8 column flaw)
  | cell => .error (.wrongKind column cell.kind)

/-- The header and the time in a row. The types of both columns are checked first, then the
header's bytes, and the sign of the time last.
-/
def seenHeader (key : BlockHash) (row : Row) : Except StoreError SeenHeader := do
  let bytes ← blobIn .header row.header
  let firstSeen ← integerIn .firstSeen row.firstSeen
  let header ← (Header.decode bytes).mapError (.undecodable key)
  if firstSeen < 0 then .error .firstSeenNegative else .ok ⟨header, firstSeen.toUInt64⟩

/-- The height in a row, null if unknown. -/
def knownHeight (row : Row) : Except StoreError (Option Height) :=
  match row.height with
  | .null => .ok none
  | cell => do
      let value ← integerIn .height cell
      if 0 ≤ value ∧ value.toInt < UInt32.size then .ok (some value.toUInt64.toUInt32)
      else .error (.heightOutOfRange value)

/-- The work in a row: 32 bytes as hexadecimal text, most significant first. -/
def knownWork (key : BlockHash) (row : Row) : Except StoreError Work := do
  let text ← textIn .chainWork row.chainWork
  let bytes ← (Hex.decodeBytes text.bytes).mapError .workNotHex
  if bytes.length = 32 then .ok (.ofNat (Bytes.ofBigEndian bytes))
  else .error (.workNotFullWidth key)

end Row

/-- Rows under the texts of the hashes they are filed by. -/
structure RowStore where
  rows : KeyedTable String Row

namespace RowStore

/-- A store without rows. -/
def empty : RowStore :=
  ⟨.empty⟩

instance : Inhabited RowStore := ⟨empty⟩

/-- The number of rows. -/
def size (store : RowStore) : Nat :=
  store.rows.size

/-- Writes a row of any values under a key, in place of an earlier row. A row that lacks a value it
must have is not written.
-/
def putRow (key : BlockHash) (row : Row) (store : RowStore) : RowStore :=
  if row.isComplete then ⟨store.rows.put key.text row.stored⟩ else store

/-- Stores a header with the given metadata under its hash, in place of an earlier row. -/
def put (header : Header) (height : Option Height) (chainWork : Work) (firstSeen : UInt64)
    : StoreRead RowStore BlockHash := fun store =>
  match Row.ofHeader header height chainWork firstSeen with
  | .error error => .error error store
  | .ok row => .ok header.hash (store.putRow header.hash row)

/-- Reads the row under a key; without a row there is no answer. -/
def readRow {α : Type} (key : BlockHash) (read : Row → Except StoreError (Option α))
    : StoreRead RowStore (Option α) := fun store =>
  match store.rows.get? key.text with
  | none => .ok none store
  | some row =>
      match read row with
      | .ok answer => .ok answer store
      | .error error => .error error store

instance : HeaderSource RowStore where
  fetch hash := readRow hash fun row => (row.seenHeader hash).map some
  heightFor hash := readRow hash Row.knownHeight
  workThrough hash := readRow hash fun row => (row.knownWork hash).map some

end RowStore

end HeaderChain
