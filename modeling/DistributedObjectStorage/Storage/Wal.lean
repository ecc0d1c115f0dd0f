import DistributedObjectStorage.Common.Status

/-!
# The write-ahead log as records

`Replay` returns the intact records and stops at a torn tail. The byte format
is not modelled here: a record is either in the file as a whole or it left a
torn tail behind.
-/
namespace Dos.Storage

inductive WalOp where
  | put | delete
  deriving DecidableEq, Repr

/-- A BEGIN record, or a COMMIT record of which only `seq` matters. -/
structure WalRecord where
  seq : ℕ
  isCommit : Bool
  op : WalOp
  key : Bytes
  version : ℕ
  checksum : Bytes
  size : ℕ
  deriving DecidableEq, Repr

def WalRecord.begin (seq : ℕ) (op : WalOp) (key : Bytes) (version : ℕ) (checksum : Bytes)
    (size : ℕ) : WalRecord := ⟨seq, false, op, key, version, checksum, size⟩

def WalRecord.commit (seq : ℕ) : WalRecord := ⟨seq, true, .put, [], 0, [], 0⟩

structure Wal where
  records : List WalRecord
  torn : Bool
  deriving DecidableEq, Repr

namespace Wal

def empty : Wal := ⟨[], false⟩

/-- A record behind a torn tail is never reached by `Replay`. -/
def appendRecord (w : Wal) (rec : WalRecord) : Wal :=
  if w.torn then w else { w with records := w.records ++ [rec] }

/-- A crash in the middle of an append. -/
def tear (w : Wal) : Wal := { w with torn := true }

def replay (w : Wal) : List WalRecord := w.records

/-- The sequences that some COMMIT record closes. -/
def committed (records : List WalRecord) : List ℕ :=
  (records.filter (·.isCommit)).map (·.seq)

/-- The BEGIN records without a COMMIT, in log order. -/
def openRecords (records : List WalRecord) : List WalRecord :=
  records.filter fun rec => !rec.isCommit && rec.seq ∉ committed records

end Wal

section Records
variable {records : List WalRecord} {rec : WalRecord}

theorem committed_begin (plain : rec.isCommit = false) :
    Wal.committed (records ++ [rec]) = Wal.committed records := by
  simp [Wal.committed, plain]

theorem committed_commit (seq : ℕ) :
    Wal.committed (records ++ [.commit seq]) = Wal.committed records ++ [seq] := by
  simp [Wal.committed, WalRecord.commit]

theorem openRecords_begin (plain : rec.isCommit = false)
    (fresh : rec.seq ∉ Wal.committed records) :
    Wal.openRecords (records ++ [rec]) = Wal.openRecords records ++ [rec] := by
  unfold Wal.openRecords
  rw [committed_begin plain, List.filter_append]
  simp [plain, fresh]

theorem openRecords_commit (seq : ℕ) :
    Wal.openRecords (records ++ [.commit seq]) =
      (Wal.openRecords records).filter (·.seq ≠ seq) := by
  unfold Wal.openRecords
  rw [committed_commit, List.filter_append, List.filter_filter]
  have marker : List.filter (fun rec : WalRecord =>
      !rec.isCommit && decide (rec.seq ∉ Wal.committed records ++ [seq])) [.commit seq] = [] := rfl
  rw [marker, List.append_nil]
  refine List.filter_congr (fun rec _ => ?_)
  by_cases same : rec.seq = seq <;> by_cases done : rec.seq ∈ Wal.committed records <;>
    simp [same, done]

end Records
end Dos.Storage
