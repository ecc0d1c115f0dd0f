import Mathlib.Data.List.DropRight
import Mathlib.Data.List.TakeWhile
import DistributedObjectStorage.Common.OrderedMap

/-! The metadata table of a storage node. SQLite is taken at its word: each
statement is one atomic step on the table. -/
namespace Dos.Storage

/-- The committed state of one object version. -/
structure ObjectMetadata where
  key : Bytes
  size : ℕ
  checksum : Bytes
  version : ℕ
  createdAt : Int
  deleted : Bool
  requestId : Bytes
  deriving DecidableEq, Repr

/-- Text columns are read back as C strings. -/
def cString (s : Bytes) : Bytes := s.takeWhile (· ≠ 0)

def readRow (row : ObjectMetadata) : ObjectMetadata :=
  { row with
    key := cString row.key
    checksum := cString row.checksum
    requestId := cString row.requestId }

structure SqliteMetadataStore where
  objects : OrderedMap Bytes ObjectMetadata

namespace SqliteMetadataStore

def put (s : SqliteMetadataStore) (row : ObjectMetadata) : SqliteMetadataStore :=
  ⟨s.objects.insert row.key row⟩

def get (s : SqliteMetadataStore) (key : Bytes) : StatusOr ObjectMetadata :=
  match s.objects[key]? with
  | none => .error (.notFound (text "no such key: " ++ key))
  | some row =>
      if row.deleted then .error (.notFound (text "tombstoned: " ++ key)) else .ok (readRow row)

/-- Like `get`, but a tombstone counts as a row. -/
def peek (s : SqliteMetadataStore) (key : Bytes) : StatusOr ObjectMetadata :=
  match s.objects[key]? with
  | none => .error (.notFound (text "no such key: " ++ key))
  | some row => .ok (readRow row)

def delete (s : SqliteMetadataStore) (key : Bytes) : SqliteMetadataStore × Status :=
  match s.objects[key]? with
  | none => (s, .notFound (text "no such key: " ++ key))
  | some row =>
      if row.deleted then (s, .notFound (text "no such key: " ++ key))
      else (⟨s.objects.insert key { row with deleted := true }⟩, .success)

/-- The bounds of the range scan. A last byte of 255 has no successor; a prefix
of such bytes alone gets the bound of the scan over everything. -/
def listBounds (pre : Bytes) : Bytes × Bytes :=
  let hi := pre.rdropWhile (· = 255)
  match hi.getLast? with
  | none => (pre, [255])
  | some last => (pre, hi.dropLast ++ [last + 1])

/-- Keys are compared byte by byte. -/
def list (s : SqliteMetadataStore) (pre : Bytes) : StatusOr (List ObjectMetadata) :=
  let (lo, hi) := listBounds pre
  let rows := s.objects.toList.filter fun entry =>
    !entry.2.deleted && (compare lo entry.1).isLE && compare entry.1 hi == .lt
  .ok (rows.map fun entry => readRow entry.2)

end SqliteMetadataStore

theorem cString_eq {s : Bytes} (h : (0 : UInt8) ∉ s) : cString s = s := by
  unfold cString
  rw [List.takeWhile_eq_self_iff]
  intro c hc
  simp only [decide_eq_true_eq]
  rintro rfl
  exact h hc

end Dos.Storage
