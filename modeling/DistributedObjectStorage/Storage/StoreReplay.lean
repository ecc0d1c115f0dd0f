import DistributedObjectStorage.Storage.StoreSlot

/-!
# Recovery of one key

Records of other keys and closed records leave a key alone, and no record
changes a file. So what recovery makes of a key is a fold over the key's own
open records, one row at a time.
-/
namespace Dos.Storage

/-- A row, if there is one, as a tombstone. -/
def bury (row : Option ObjectMetadata) : Option ObjectMetadata :=
  row.map fun r => { r with deleted := true }

/-- What one open record makes of the row of its key. -/
def recoverRow (file : Option Bytes) (now : Int) (row : Option ObjectMetadata) (rec : WalRecord) :
    Option ObjectMetadata :=
  match rec.op with
  | .put =>
      if row.any (rec.version ≤ ·.version) then row
      else if file.any (sha256Hex · = rec.checksum) then some (recoveredRow rec now)
      else row
  | .delete => bury row

section Record
variable {d : Disk} {committed : List ℕ} {rec : WalRecord} {key : Bytes} {now : Int}

theorem recoverRow_inert (inert : (d.slot key).Inert rec) :
    recoverRow (d.slot key).file now (d.slot key).row rec = (d.slot key).row := by
  unfold Slot.Inert at inert
  unfold recoverRow
  cases kind : rec.op with
  | put =>
      rw [kind] at inert
      rcases inert with ⟨row, found, newer⟩ | differs
      · simp [Option.mem_def.mp found, newer]
      · have none : (d.slot key).file.any (sha256Hex · = rec.checksum) = false := by
          cases file : (d.slot key).file with
          | none => rfl
          | some data => simpa using differs data file
        simp [none]
  | delete =>
      rw [kind] at inert
      cases found : (d.slot key).row with
      | none => rfl
      | some row =>
          have gone : row.deleted = true := inert row found
          cases row
          cases gone
          rfl

theorem recoverRecord_row (isOpen : ¬(rec.isCommit = true ∨ rec.seq ∈ committed)) :
    ((recoverRecord committed now d rec).slot rec.key).row =
      recoverRow (d.slot rec.key).file now (d.slot rec.key).row rec := by
  by_cases inert : (d.slot rec.key).Inert rec
  · rw [recoverRecord_inert inert, recoverRow_inert inert]
  · cases kind : rec.op with
    | put =>
        rw [recoverRecord_put isOpen kind inert]
        have slot : ((d.putRow (recoveredRow rec now)).slot rec.key).row = some (recoveredRow rec now) :=
          congrArg Slot.row (d.slot_putRow (recoveredRow rec now))
        unfold Slot.Inert at inert
        rw [kind] at inert
        push Not at inert
        obtain ⟨older, data, file, sum⟩ := inert
        have behind : (d.slot rec.key).row.any (rec.version ≤ ·.version) = false := by
          cases found : (d.slot rec.key).row with
          | none => rfl
          | some row => simpa using older row found
        rw [slot, recoverRow, kind]
        simp [behind, Option.mem_def.mp file, sum]
    | delete =>
        unfold Slot.Inert at inert
        rw [kind] at inert
        obtain ⟨row, found, live⟩ := Slot.live_of_not_dead inert
        rw [recoverRecord_delete isOpen kind found live, (Disk.deleteRow_live found live).2.1, recoverRow,
          kind]
        simp [bury, found]

theorem recoverRecord_opened (d : Disk) (rec : WalRecord) (committed : List ℕ) (now : Int)
    (key : Bytes) : ((recoverRecord committed now d rec).slot key).opened = (d.slot key).opened := by
  simp only [Disk.slot, (recoverRecord_frame d rec committed now).1]

theorem recoverRecord_row_ne (ne : rec.key ≠ key) :
    ((recoverRecord committed now d rec).slot key).row = (d.slot key).row := by
  rcases recoverRecord_cases committed now d rec with skipped | ⟨put, _⟩ | deleted
  · rw [skipped]
  · rw [put]
    exact congrArg Slot.row (d.slot_putRow_ne ne)
  · rw [deleted]
    exact Disk.deleteRow_row_ne ne

end Record

section Records
variable (d : Disk) (committed : List ℕ) (records : List WalRecord) (now : Int) (key : Bytes)

/-- The records of a pass that concern the key. -/
def openOf : List WalRecord :=
  (records.filter fun rec => !rec.isCommit && rec.seq ∉ committed).filter (·.key = key)

theorem foldl_recoverRecord_frame :
    (records.foldl (recoverRecord committed now) d).wal = d.wal ∧
      (records.foldl (recoverRecord committed now) d).files = d.files := by
  induction records generalizing d with
  | nil => exact ⟨rfl, rfl⟩
  | cons rec rest ih =>
      obtain ⟨wal, files⟩ := recoverRecord_frame d rec committed now
      rw [List.foldl_cons, (ih _).1, (ih _).2, wal, files]
      exact ⟨rfl, rfl⟩

theorem foldl_recoverRecord_row :
    ((records.foldl (recoverRecord committed now) d).slot key).row =
      (openOf committed records key).foldl (recoverRow (d.slot key).file now) (d.slot key).row := by
  induction records generalizing d with
  | nil => rfl
  | cons rec rest ih =>
      have file : ((recoverRecord committed now d rec).slot key).file = (d.slot key).file := by
        simp only [Disk.slot, (recoverRecord_frame d rec committed now).2]
      rw [List.foldl_cons, ih, file]
      by_cases closed : rec.isCommit = true ∨ rec.seq ∈ committed
      · have skipped : openOf committed (rec :: rest) key = openOf committed rest key := by
          unfold openOf
          rcases closed with commit | done
          · simp [commit]
          · simp [done]
        rw [recoverRecord_closed closed, skipped]
      · obtain ⟨plain, uncommitted⟩ : rec.isCommit = false ∧ rec.seq ∉ committed := by
          simpa using closed
        by_cases same : rec.key = key
        · subst same
          have taken : openOf committed (rec :: rest) rec.key = rec :: openOf committed rest rec.key := by
            simp [openOf, plain, uncommitted]
          rw [recoverRecord_row closed, taken, List.foldl_cons]
        · have skipped : openOf committed (rec :: rest) key = openOf committed rest key := by
            simp [openOf, plain, uncommitted, same]
          rw [recoverRecord_row_ne same, skipped]

/-- What an uninterrupted recovery leaves of a key. -/
theorem recover_slot :
    (recover d now).slot key =
      { d.slot key with
        row := (d.slot key).opened.foldl (recoverRow (d.slot key).file now) (d.slot key).row
        opened := [] } := by
  have row := foldl_recoverRecord_row d (Wal.committed d.wal.records) d.wal.records now key
  obtain ⟨_, files⟩ := foldl_recoverRecord_frame d (Wal.committed d.wal.records) d.wal.records now
  have file : ((recover d now).slot key).file = (d.slot key).file := by
    simp only [Disk.slot, recover, Wal.replay, files]
  calc (recover d now).slot key
      = ⟨((recover d now).slot key).row, ((recover d now).slot key).file, []⟩ := rfl
    _ = _ := by
      rw [file]
      exact congrArg (Slot.mk · _ _) row

end Records

/-! ## Passes over the records of one key -/

section Rows
variable {file : Option Bytes} {now : Int} {row : Option ObjectMetadata} {rec : WalRecord}
  {left : List WalRecord}

theorem bury_bury : bury (bury row) = bury row := by
  cases row <;> rfl

theorem foldl_deletes (deletes : ∀ rec ∈ left, rec.op = .delete) :
    left.foldl (recoverRow file now) row = if left = [] then row else bury row := by
  induction left generalizing row with
  | nil => rfl
  | cons rec rest ih =>
      obtain ⟨first, later⟩ := List.forall_mem_cons.mp deletes
      have buried : recoverRow file now row rec = bury row := by simp only [recoverRow, first]
      rw [List.foldl_cons, buried, ih later]
      split
      · simp
      · simp [bury_bury]

/-- Recovery completes the write of the record. -/
def Completes (file : Option Bytes) (row : Option ObjectMetadata) (rec : WalRecord) : Prop :=
  row.any (rec.version ≤ ·.version) = false ∧ file.any (sha256Hex · = rec.checksum) = true

theorem recoverRow_completes (put : rec.op = .put) (completes : Completes file row rec) :
    recoverRow file now row rec = some (recoveredRow rec now) := by
  simp [recoverRow, put, completes.1, completes.2]

theorem recoverRow_skips (put : rec.op = .put) (skips : ¬Completes file row rec) :
    recoverRow file now row rec = row := by
  unfold Completes at skips
  simp only [recoverRow, put]
  split
  · rfl
  · next older =>
      rw [if_neg]
      intro same
      exact skips ⟨Bool.eq_false_iff.mpr older, same⟩

theorem completes_bury : Completes file (bury row) rec ↔ Completes file row rec := by
  cases row <;> rfl

theorem not_completes_recovered : ¬Completes file (some (recoveredRow rec now)) rec := by
  simp [Completes, recoveredRow]

end Rows
end Dos.Storage
